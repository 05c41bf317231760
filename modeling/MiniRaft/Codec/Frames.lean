import MiniRaft.Server.Basic
import MiniRaft.Stream.Incremental

/-!
# The framed codec

`Codec` of `codec.rs`: a message is its JSON behind the length of the JSON, a big-endian `u32`.  A
`BytesMut` is the list of the bytes it holds; a `usize` has 64 bits, so `4 + len` does not overflow.

`serde_json` is a parameter: `SerdeJson` holds its two functions.

* `Codec.decode_cases` : **inversion of `decode`**: no whole frame yet, or the first frame is taken
  off the buffer.
* `Codec.stream_round_trip` : what is encoded is decoded, however the stream is cut.
* `Codec.chunk_independence` : the same of arbitrary bytes.
-/

namespace MiniRaft

abbrev Bytes := List UInt8

/-- `serde_json::to_vec` and `serde_json::from_slice` at the type `Message`. -/
structure SerdeJson (ε : Type) where
  toVec : Message → Except ε Bytes
  fromSlice : Bytes → Except ε Message

/-- `io::ErrorKind`, as far as it is used. -/
inductive ErrorKind
  | invalidData
  deriving DecidableEq, Repr

/-- `io::Error` around an error of `serde_json`. -/
structure IoError (ε : Type) where
  kind : ErrorKind
  source : ε
  deriving DecidableEq, Repr

/-- `BufMut::put_u32`: the bytes of a `u32`, the most significant one first. -/
def putU32 (n : ℕ) : Bytes :=
  [UInt8.ofNat (n / 2 ^ 24), UInt8.ofNat (n / 2 ^ 16), UInt8.ofNat (n / 2 ^ 8), UInt8.ofNat n]

/-- `u32::from_be_bytes`. -/
def fromBeBytes (bytes : Bytes) : ℕ := bytes.foldl (fun n b => 256 * n + b.toNat) 0

namespace Codec

variable {ε : Type} (serde : SerdeJson ε)

/-- `Encoder::encode`: the result and `dst` afterwards. -/
def encode (item : Message) (dst : Bytes) : Except (IoError ε) Unit × Bytes :=
  match serde.toVec item with
  | .error e => (.error ⟨.invalidData, e⟩, dst)
  | .ok payload => (.ok (), dst ++ putU32 (asU32 payload.length) ++ payload)

/-- `Decoder::decode`: the result and `src` afterwards. -/
def decode (src : Bytes) : Except (IoError ε) (Option Message) × Bytes :=
  if src.length < 4 then (.ok none, src)
  else
    let frameLen := 4 + fromBeBytes (src.take 4)
    -- `src.reserve` makes room and changes no content
    if src.length < frameLen then (.ok none, src)
    else
      match serde.fromSlice ((src.take frameLen).drop 4) with
      | .error e => (.error ⟨.invalidData, e⟩, src.drop frameLen)
      | .ok msg => (.ok (some msg), src.drop frameLen)

/-- Encode the messages one after the other, up to the first error. -/
def encodeAll : List Message → Bytes → Except (IoError ε) Bytes
  | [], dst => .ok dst
  | item :: items, dst =>
    match encode serde item dst with
    | (.ok (), dst) => encodeAll items dst
    | (.error e, _) => .error e

/-- One round of a loop that calls `decode` until it returns `Ok(None)`. -/
def decodeNext (src : Bytes) : Option (Except (IoError ε) Message × Bytes) :=
  match decode serde src with
  | (.ok none, _) => none
  | (.ok (some msg), rest) => some (.ok msg, rest)
  | (.error e, rest) => some (.error e, rest)

/-- What a frame with this payload decodes to. -/
def decodePayload (payload : Bytes) : Except (IoError ε) Message :=
  match serde.fromSlice payload with
  | .error e => .error ⟨.invalidData, e⟩
  | .ok msg => .ok msg

/-! ### Headers -/

theorem length_putU32 (n : ℕ) : (putU32 n).length = 4 := rfl

theorem fromBeBytes_putU32 {n : ℕ} (h : n < 2 ^ 32) : fromBeBytes (putU32 n) = n := by
  simp only [fromBeBytes, putU32, List.foldl_cons, List.foldl_nil, UInt8.toNat_ofNat']
  omega

theorem putU32_fromBeBytes {bytes : Bytes} (h : bytes.length = 4) :
    putU32 (fromBeBytes bytes) = bytes := by
  obtain ⟨a, b, c, d, rfl⟩ := List.length_eq_four.1 h
  have ha := a.toNat_lt
  have hb := b.toNat_lt
  have hc := c.toNat_lt
  have hd := d.toNat_lt
  simp only [fromBeBytes, putU32, List.foldl_cons, List.foldl_nil, List.cons.injEq, and_true,
    ← UInt8.toNat_inj, UInt8.toNat_ofNat']
  omega

theorem fromBeBytes_lt {bytes : Bytes} (h : bytes.length = 4) : fromBeBytes bytes < 2 ^ 32 := by
  obtain ⟨a, b, c, d, rfl⟩ := List.length_eq_four.1 h
  have ha := a.toNat_lt
  have hb := b.toNat_lt
  have hc := c.toNat_lt
  have hd := d.toNat_lt
  simp only [fromBeBytes, List.foldl_cons, List.foldl_nil]
  omega

/-! ### Frames -/

/-- A payload behind its length. -/
def frame (payload : Bytes) : Bytes := putU32 payload.length ++ payload

theorem length_frame (payload : Bytes) : (frame payload).length = 4 + payload.length := by
  rw [frame, List.length_append, length_putU32]

variable {serde}

theorem encode_eq {item : Message} {payload : Bytes} (h : serde.toVec item = .ok payload)
    (hlen : payload.length < 2 ^ 32) (dst : Bytes) :
    encode serde item dst = (.ok (), dst ++ frame payload) := by
  simp only [encode, h, frame, asU32_of_lt hlen, List.append_assoc]

/-- A whole frame at the front of the buffer is taken off, whatever follows it. -/
theorem decode_frame (serde : SerdeJson ε) {payload : Bytes} (h : payload.length < 2 ^ 32)
    (rest : Bytes) :
    decode serde (frame payload ++ rest) = ((decodePayload serde payload).map some, rest) := by
  have hlen : (frame payload ++ rest).length = 4 + payload.length + rest.length := by
    rw [List.length_append, length_frame]
  have hhead : (frame payload ++ rest).take 4 = putU32 payload.length := by
    rw [frame, List.append_assoc]
    exact List.take_left' (length_putU32 _)
  have htake : (frame payload ++ rest).take (4 + payload.length) = frame payload :=
    List.take_left' (length_frame payload)
  have hdrop : (frame payload ++ rest).drop (4 + payload.length) = rest :=
    List.drop_left' (length_frame payload)
  have hbody : (frame payload).drop 4 = payload := List.drop_left' (length_putU32 _)
  have hshort : ¬ (frame payload ++ rest).length < 4 := by omega
  have hwhole : ¬ (frame payload ++ rest).length < 4 + payload.length := by omega
  unfold decode
  rw [if_neg hshort, hhead, fromBeBytes_putU32 h]
  dsimp only
  rw [if_neg hwhole, htake, hdrop, hbody, decodePayload]
  cases serde.fromSlice payload with
  | error e => rfl
  | ok msg => rfl

/-- **Inversion of `decode`.** -/
theorem decode_cases (serde : SerdeJson ε) (src : Bytes) :
    decode serde src = (.ok none, src) ∨
      ∃ payload rest, payload.length < 2 ^ 32 ∧ src = frame payload ++ rest := by
  by_cases hshort : src.length < 4
  · left
    rw [decode, if_pos hshort]
  · have hhead : (src.take 4).length = 4 := by
      rw [List.length_take]
      omega
    by_cases hwhole : src.length < 4 + fromBeBytes (src.take 4)
    · left
      rw [decode, if_neg hshort]
      exact if_pos hwhole
    · right
      refine ⟨(src.drop 4).take (fromBeBytes (src.take 4)),
        (src.drop 4).drop (fromBeBytes (src.take 4)), ?_, ?_⟩
      · exact Nat.lt_of_le_of_lt (List.length_take_le _ _) (fromBeBytes_lt hhead)
      · have hlen : ((src.drop 4).take (fromBeBytes (src.take 4))).length =
            fromBeBytes (src.take 4) := by
          rw [List.length_take, List.length_drop]
          omega
        rw [frame, hlen, putU32_fromBeBytes hhead, List.append_assoc, List.take_append_drop,
          List.take_append_drop]

theorem decodeNext_frame (serde : SerdeJson ε) {payload : Bytes} (h : payload.length < 2 ^ 32)
    (rest : Bytes) :
    decodeNext serde (frame payload ++ rest) = some (decodePayload serde payload, rest) := by
  rw [decodeNext, decode_frame serde h]
  cases decodePayload serde payload with
  | error e => rfl
  | ok msg => rfl

theorem decodeNext_eq_some {src rest : Bytes} {r : Except (IoError ε) Message}
    (h : decodeNext serde src = some (r, rest)) :
    ∃ payload, payload.length < 2 ^ 32 ∧ src = frame payload ++ rest ∧
      r = decodePayload serde payload := by
  rcases decode_cases serde src with hnone | ⟨payload, rest', hlen, rfl⟩
  · rw [decodeNext, hnone] at h
    cases h
  · rw [decodeNext_frame serde hlen, Option.some.injEq, Prod.mk.injEq] at h
    obtain ⟨rfl, rfl⟩ := h
    exact ⟨payload, hlen, rfl, rfl⟩

theorem length_of_decodeNext {src rest : Bytes} {r : Except (IoError ε) Message}
    (h : decodeNext serde src = some (r, rest)) : rest.length + 4 ≤ src.length := by
  obtain ⟨payload, -, rfl, -⟩ := decodeNext_eq_some h
  rw [List.length_append, length_frame]
  omega

variable (serde)

/-- The decoder of a connection. -/
def decoder : Incremental UInt8 (Except (IoError ε) Message) where
  step := decodeNext serde
  consumes h := by
    have := length_of_decodeNext h
    omega
  extends_step more h := by
    obtain ⟨payload, hlen, rfl, rfl⟩ := decodeNext_eq_some h
    rw [List.append_assoc]
    exact decodeNext_frame serde hlen _

variable {serde}

/-! ### Streams -/

theorem encodeAll_eq {msgs : List Message} {payload : Message → Bytes}
    (h : ∀ m ∈ msgs, serde.toVec m = .ok (payload m) ∧ (payload m).length < 2 ^ 32)
    (dst : Bytes) :
    encodeAll serde msgs dst = .ok (dst ++ msgs.flatMap fun m => frame (payload m)) := by
  induction msgs generalizing dst with
  | nil => rw [encodeAll, List.flatMap_nil, List.append_nil]
  | cons m msgs ih =>
    obtain ⟨hm, hlen⟩ := h m List.mem_cons_self
    rw [encodeAll, encode_eq hm hlen]
    dsimp only
    rw [ih fun x hx => h x (List.mem_cons_of_mem m hx), List.flatMap_cons, List.append_assoc]

/-- **Stream round trip.**  Messages whose payloads are shorter than `2 ^ 32` bytes are encoded
without an error, and however the bytes are cut into chunks, decoding them finds these messages in
this order, no error, and leaves nothing in the buffer. -/
theorem stream_round_trip (hserde : ∀ m payload, serde.toVec m = .ok payload →
      serde.fromSlice payload = .ok m) (msgs : List Message)
    (hmsgs : ∀ m ∈ msgs, ∃ payload, serde.toVec m = .ok payload ∧ payload.length < 2 ^ 32) :
    ∃ bytes, encodeAll serde msgs [] = .ok bytes ∧ ∀ chunks : List Bytes, chunks.flatten = bytes →
      (decoder serde).feed [] chunks = (msgs.map .ok, []) := by
  choose! payload hvec hlen using hmsgs
  refine ⟨_, encodeAll_eq (fun m hm => ⟨hvec m hm, hlen m hm⟩) [], fun chunks hchunks => ?_⟩
  rw [Incremental.feed_nil_eq, hchunks, List.nil_append]
  refine Incremental.drain_flatMap fun m hm more => ?_
  have hpayload : decodePayload serde (payload m) = .ok m := by
    rw [decodePayload, hserde m _ (hvec m hm)]
  have hframe := decodeNext_frame serde (hlen m hm) more
  rw [hpayload] at hframe
  exact hframe

/-- The JSON of the greeting of node 1. -/
def helloJson : Bytes :=
  "\x7b\"HelloType\":\x7b\"id\":1\x7d\x7d".toList.map fun c => UInt8.ofNat c.toNat

/-- `serde_json` as far as this greeting goes. -/
def helloSerde : SerdeJson String where
  toVec m := if m = .hello 1 then .ok helloJson else .error "not a greeting"
  fromSlice payload :=
    if payload = helloJson then .ok (.hello 1) else .error "expected value at line 1 column 1"

/-- Two greetings, cut inside the first header. -/
theorem stream_round_trip_greetings :
    ∃ bytes, encodeAll helloSerde [.hello 1, .hello 1] [] = .ok bytes ∧
      (decoder helloSerde).feed [] [bytes.take 2, [], bytes.drop 2] =
        ([.ok (.hello 1), .ok (.hello 1)], []) := by
  have hserde : ∀ m payload, helloSerde.toVec m = .ok payload →
      helloSerde.fromSlice payload = .ok m := by
    intro m payload h
    simp only [helloSerde] at h
    split_ifs at h with hm
    cases h
    simp [helloSerde, hm]
  have hlen : helloJson.length < 2 ^ 32 := by decide
  obtain ⟨bytes, hbytes, hfeed⟩ := stream_round_trip hserde [.hello 1, .hello 1] fun m hm => by
    have hm : m = .hello 1 := by simpa using hm
    exact ⟨helloJson, by rw [hm]; rfl, hlen⟩
  exact ⟨bytes, hbytes, hfeed _ (by simp)⟩

/-- **Chunk independence.**  Whatever `serde_json` makes of a payload and whatever the bytes:
however they are cut into chunks, the same messages and errors are found and the same bytes are left
over; a payload that is no message takes up its own frame and nothing else; every result but `None`
takes up at least four bytes, so that the loop ends; and `None` leaves the buffer as it is. -/
theorem chunk_independence (serde : SerdeJson ε) :
    (∀ chunks : List Bytes,
      (decoder serde).feed [] chunks = (decoder serde).drain chunks.flatten) ∧
    (∀ payload rest e, payload.length < 2 ^ 32 → serde.fromSlice payload = .error e →
      decode serde (putU32 payload.length ++ payload ++ rest) =
        (.error ⟨.invalidData, e⟩, rest) ∧
      (decoder serde).drain (putU32 payload.length ++ payload ++ rest) =
        (.error ⟨.invalidData, e⟩ :: ((decoder serde).drain rest).1,
          ((decoder serde).drain rest).2)) ∧
    (∀ src, (decode serde src).1 ≠ .ok none →
      (decode serde src).2.length + 4 ≤ src.length) ∧
    (∀ src, 4 * ((decoder serde).drain src).1.length + ((decoder serde).drain src).2.length ≤
      src.length) ∧
    ∀ src, (decode serde src).1 = .ok none → (decode serde src).2 = src := by
  refine ⟨Incremental.feed_nil_eq, fun payload rest e hlen he => ?_, fun src hsome => ?_,
    Incremental.length_drain_mul_le length_of_decodeNext, fun src hnone => ?_⟩
  · have hpayload : decodePayload serde payload = .error ⟨.invalidData, e⟩ := by
      rw [decodePayload, he]
    have hdecode := decode_frame serde hlen rest
    have hnext := decodeNext_frame serde hlen rest
    rw [hpayload] at hdecode hnext
    exact ⟨hdecode, Incremental.drain_of_some hnext⟩
  · rcases decode_cases serde src with hnone | ⟨payload, rest, hlen, rfl⟩
    · rw [hnone] at hsome
      exact absurd rfl hsome
    · rw [decode_frame serde hlen, List.length_append, length_frame]
      dsimp only
      omega
  · rcases decode_cases serde src with hsame | ⟨payload, rest, hlen, rfl⟩
    · rw [hsame]
    · rw [decode_frame serde hlen] at hnone
      cases hp : decodePayload serde payload <;> simp [hp, Except.map] at hnone

/-- A frame that holds no message, in front of the next header. -/
theorem chunk_independence_undecodable :
    decode helloSerde [0, 0, 0, 1, 120, 0, 0] =
      (.error ⟨.invalidData, "expected value at line 1 column 1"⟩, [0, 0]) :=
  ((chunk_independence helloSerde).2.1 [120] [0, 0] _ (by decide) rfl).1

end Codec

end MiniRaft
